import PolyExpression.Proofs.Operations

/-!
The last value that was sent of a controller. If no two rules share an output, what is sent of a rule's output
on the channel of a held note depends on that rule alone. Main statements: what the setup around a note, the
end of a note and the routing of a controller send of it.
-/

namespace PolyExpression

open Midi (Event)

/-- Whether an event sets a controller. -/
def Midi.Event.sets (event : Event) (controller : ControllerId) : Bool :=
  match event.command with
  | .pitchBend => controller == .pitchWheel
  | .channelPressure => controller == .channelPressure
  | .controlChange => controller.midiNumber? == some event.data1
  | _ => false

/-- The events that set a controller of a channel. -/
def settings (controller : ControllerId) (channel : Channel) (events : List Event) : List Event :=
  events.filter fun event => event.sets controller && event.channel == channel.val.toUInt8

/-- Whether the last event that sets a controller of a channel is the one that carries a value. -/
def Carries (controller : ControllerId) (channel : Channel) (events : List Event) (value : Float) : Prop :=
  ∃ time isSetup event, controllerEvent? time channel controller value isSetup = some event
    ∧ (settings controller channel events).getLast? = some event

/-- Whether a controller can be sent. -/
def ControllerId.IsSendable (controller : ControllerId) : Prop :=
  controller.midiNumber?.isSome = true ∨ controller = .pitchWheel ∨ controller = .channelPressure

theorem ControllerId.eq_of_midiNumber? {a b : ControllerId} {number : UInt8} (ha : a.midiNumber? = some number)
    (hb : b.midiNumber? = some number) : a = b := by
  unfold midiNumber? at ha hb
  split at ha
  · split at hb
    · have hbyte : ∀ c : ControllerId, c.index.val < 120 → c.toByte.toNat = c.index.val :=
        fun c hc => Nat.mod_eq_of_lt (by omega)
      have hval : a.toByte = b.toByte := (Option.some.inj ha).trans (Option.some.inj hb).symm
      have hindex : a.index.val = b.index.val := by
        rw [← hbyte a ‹_›, ← hbyte b ‹_›, hval]
      cases a
      cases b
      exact congrArg ControllerId.mk (Fin.ext hindex)
    · cases hb
  · cases ha

theorem flatMap_eq_of_unique {α β : Type} {items : List α} {f : α → List β} {item : α} (hnodup : items.Nodup)
    (hitem : item ∈ items) (h : ∀ other ∈ items, other ≠ item → f other = []) : items.flatMap f = f item := by
  induction items with
  | nil => cases hitem
  | cons first rest ih =>
      obtain ⟨hfirst, hrest⟩ := List.nodup_cons.mp hnodup
      rw [List.flatMap_cons]
      by_cases heq : first = item
      · have hnothing : rest.flatMap f = [] := by
          refine List.flatMap_eq_nil_iff.mpr fun other hother => ?_
          exact h other (List.mem_cons_of_mem _ hother) fun hsame => hfirst (heq.trans hsame.symm ▸ hother)
        rw [heq, hnothing, List.append_nil]
      · have hmem : item ∈ rest := (List.mem_cons.mp hitem).resolve_left fun hsame => heq hsame.symm
        rw [h first List.mem_cons_self heq, List.nil_append]
        exact ih hrest hmem fun other hother => h other (List.mem_cons_of_mem _ hother)

section settings

variable {time value : Float} {channel other : Channel} {controller output : ControllerId} {isSetup : Bool}
  {event : Event} {events first second : List Event}

theorem sets_iff_of_controllerEvent? (h : controllerEvent? time channel controller value isSetup = some event) :
    event.sets output = true ↔ controller = output := by
  unfold controllerEvent? at h
  dsimp only at h
  split at h
  · rename_i hwheel
    obtain rfl := Option.some.inj h
    rw [hwheel]
    exact beq_iff_eq.trans eq_comm
  · split at h
    · rename_i hpressure
      obtain rfl := Option.some.inj h
      rw [hpressure]
      exact beq_iff_eq.trans eq_comm
    · obtain ⟨number, hnumber, rfl⟩ := Option.map_eq_some_iff.mp h
      refine beq_iff_eq.trans ⟨fun hother => ?_, fun hsame => ?_⟩
      · exact ControllerId.eq_of_midiNumber? hnumber hother
      · rw [← hsame]
        exact hnumber

theorem channel_of_controllerEvent? (h : controllerEvent? time channel controller value isSetup = some event) :
    event.channel = channel.val.toUInt8 := by
  unfold controllerEvent? at h
  dsimp only at h
  split at h
  · obtain rfl := Option.some.inj h
    rfl
  · split at h
    · obtain rfl := Option.some.inj h
      rfl
    · obtain ⟨number, -, rfl⟩ := Option.map_eq_some_iff.mp h
      rfl

theorem ControllerId.IsSendable.exists_event (h : controller.IsSendable) (time : Float) (channel : Channel)
    (value : Float) (isSetup : Bool) :
    ∃ event, controllerEvent? time channel controller value isSetup = some event := by
  unfold controllerEvent?
  dsimp only
  split
  · exact ⟨_, rfl⟩
  · split
    · exact ⟨_, rfl⟩
    · rename_i hwheel hpressure
      have hnumber := (h.resolve_right fun hother => hother.elim hwheel hpressure)
      obtain ⟨number, hnumber⟩ := Option.isSome_iff_exists.mp hnumber
      rw [hnumber]
      exact ⟨_, rfl⟩

theorem settings_append : settings output channel (first ++ second) =
    settings output channel first ++ settings output channel second :=
  List.filter_append ..

theorem settings_flatMap {α : Type} {items : List α} {f : α → List Event} :
    settings output channel (items.flatMap f) = items.flatMap fun item => settings output channel (f item) :=
  List.filter_flatMap ..

theorem settings_controllerEvents_of_ne (h : controller ≠ output ∨ other ≠ channel) :
    settings output channel (controllerEvents time other controller value isSetup) = [] := by
  refine List.filter_eq_nil_iff.mpr fun event hevent => ?_
  have hsent := Option.mem_toList.mp hevent
  rw [Bool.and_eq_true, sets_iff_of_controllerEvent? hsent, channel_of_controllerEvent? hsent, beq_iff_eq]
  rintro ⟨hcontroller, hchannel⟩
  exact h.elim (absurd hcontroller) (absurd (channelByte_injective hchannel))

theorem settings_controllerEvents :
    settings output channel (controllerEvents time channel output value isSetup) =
    controllerEvents time channel output value isSetup := by
  refine List.filter_eq_self.mpr fun event hevent => ?_
  have hsent := Option.mem_toList.mp hevent
  rw [Bool.and_eq_true, sets_iff_of_controllerEvent? hsent, channel_of_controllerEvent? hsent, beq_iff_eq]
  exact ⟨rfl, rfl⟩

theorem settings_noteEvent {command : Midi.Command} {note : Note} {velocity : UInt8}
    (h : command = .noteOn ∨ command = .noteOff) :
    settings output channel [noteEvent time command other note velocity] = [] := by
  rcases h with rfl | rfl
  · rfl
  · rfl

/-- A value stays the last one while nothing is sent of its controller. -/
theorem Carries.append (h : Carries output channel first value)
    (hsecond : settings output channel second = []) :
    Carries output channel (first ++ second) value := by
  obtain ⟨time, isSetup, event, hevent, hlast⟩ := h
  refine ⟨time, isSetup, event, hevent, ?_⟩
  rw [settings_append, hsecond, List.append_nil]
  exact hlast

/-- A value that has just been sent is the last one. -/
theorem carries_append (h : output.IsSendable)
    (hsecond : settings output channel second = controllerEvents time channel output value isSetup) :
    Carries output channel (first ++ second) value := by
  obtain ⟨event, hevent⟩ := h.exists_event time channel value isSetup
  refine ⟨time, isSetup, event, hevent, ?_⟩
  rw [settings_append, hsecond, controllerEvents, hevent, List.getLast?_append]
  rfl

/-- A value sent to several channels is sent to each of them once. -/
theorem settings_controllers {channels : List Channel} (hnodup : channels.Nodup)
    (hchannel : channel ∈ channels) :
    settings output channel (channels.flatMap fun other => controllerEvents time other output value isSetup) =
      controllerEvents time channel output value isSetup := by
  rw [settings_flatMap]
  refine (flatMap_eq_of_unique hnodup hchannel fun other _ hother => ?_).trans settings_controllerEvents
  exact settings_controllerEvents_of_ne (.inr hother)

theorem settings_controllers_of_not_mem {channels : List Channel} (hchannel : channel ∉ channels) :
    settings output channel (channels.flatMap fun other => controllerEvents time other controller value isSetup) =
      [] := by
  rw [settings_flatMap]
  refine List.flatMap_eq_nil_iff.mpr fun other hother => ?_
  exact settings_controllerEvents_of_ne (.inr fun heq => hchannel (heq ▸ hother))

end settings

/-! ### What a rule sends -/

namespace Rule

variable {rule : Rule} {output : ControllerId} {time : Float} {own : Option Channel} {old new : Roles}
  {start : Engine.NoteStart} {isSetup : Bool} {manager channel : Channel}

theorem displacement_eq_nil (h : rule.target.position? = none) : rule.displacement time own old new = [] := by
  unfold displacement
  rw [h]

theorem settings_displacement_of_ne (h : rule.output ≠ output) :
    settings output channel (rule.displacement time own old new) = [] := by
  unfold displacement
  cases rule.target.position? with
  | none => rfl
  | some position =>
      dsimp only
      split
      · rfl
      · cases old.channel? position.1 position.2 with
        | none => rfl
        | some displaced => exact settings_controllerEvents_of_ne (.inl h)

theorem settings_setup_of_ne (h : rule.output ≠ output) :
    settings output channel (rule.setup start isSetup manager new) = [] := by
  unfold setup
  split
  · rw [settings_append, settings_append, settings_controllerEvents_of_ne (.inl h), List.append_nil]
    have hdisplacement : settings output channel (if isSetup then
        rule.displacement start.time (some start.channel) start.before new else []) = [] := by
      split
      · exact settings_displacement_of_ne h
      · rfl
    have hfallback : settings output channel (if start.isFirst && rule.hasFallback then
        controllerEvents start.time manager rule.output rule.resetValue isSetup else []) = [] := by
      split
      · exact settings_controllerEvents_of_ne (.inl h)
      · rfl
    rw [hdisplacement, hfallback, List.append_nil]
  · rfl

/-- A channel is reset when it has lost the role of the rule's target and is not the one to leave alone. -/
theorem settings_displacement {region : Region} {role : Role} (htarget : rule.target = .voice region role) :
    settings rule.output channel (rule.displacement time own old new) =
      if old.channel? region role = some channel ∧ new.channel? region role ≠ some channel
          ∧ own ≠ some channel then
        controllerEvents time channel rule.output rule.resetValue false
      else [] := by
  have hposition : rule.target.position? = some (region, role) := by
    rw [htarget]
    rfl
  unfold displacement
  rw [hposition]
  dsimp only
  cases hold : old.channel? region role with
  | none =>
      rw [if_neg (c := _ ∧ _) fun h => nomatch h.1]
      split
      · rfl
      · rfl
  | some displaced =>
      by_cases hchannel : displaced = channel
      · subst hchannel
        by_cases hkept : some displaced = new.channel? region role ∨ some displaced = own
        · have hnot : ¬(some displaced = some displaced ∧ new.channel? region role ≠ some displaced
              ∧ own ≠ some displaced) := fun h => hkept.elim (h.2.1 ·.symm) (h.2.2 ·.symm)
          rw [if_pos hkept, if_neg hnot]
          rfl
        · rw [if_neg hkept, if_pos ⟨rfl, fun hnew => hkept (.inl hnew.symm), fun hown => hkept (.inr hown.symm)⟩]
          exact settings_controllerEvents
      · rw [if_neg (c := _ ∧ _) fun h => hchannel (Option.some.inj h.1)]
        split
        · rfl
        · exact settings_controllerEvents_of_ne (.inr hchannel)

theorem settings_displacement_own :
    settings output channel (rule.displacement time (some channel) old new) = [] := by
  unfold displacement
  cases rule.target.position? with
  | none => rfl
  | some position =>
      dsimp only
      split
      · rfl
      · rename_i hkept
        cases hold : old.channel? position.1 position.2 with
        | none => rfl
        | some displaced =>
            refine settings_controllerEvents_of_ne (.inr fun hsame => hkept (.inr ?_))
            rw [hold, hsame]

theorem settings_fallback (p : Prop) [Decidable p] {value : Float} (hmanager : manager ≠ channel) :
    settings output channel (if p then controllerEvents time manager rule.output value isSetup else []) = [] := by
  split
  · exact settings_controllerEvents_of_ne (.inr hmanager)
  · rfl

/-- The setup of a note's channel sends it one value. -/
theorem settings_setup_own (start : Engine.NoteStart) (hreset : rule.needsReset start.isAbove = true)
    (hmanager : manager ≠ start.channel) :
    settings rule.output start.channel (rule.setup start isSetup manager new) =
      controllerEvents start.time start.channel rule.output rule.resetValue isSetup := by
  have hdisplacement : settings rule.output start.channel (if isSetup then
      rule.displacement start.time (some start.channel) start.before new else []) = [] := by
    split
    · exact settings_displacement_own
    · rfl
  unfold setup
  rw [if_pos hreset, settings_append, settings_append, hdisplacement, settings_fallback _ hmanager,
    settings_controllerEvents]
  rfl

/-- The setup of a note's channel sends other channels of notes no more than the reset of a lost role. -/
theorem settings_setup_other (hmanager : manager ≠ channel) (hchannel : start.channel ≠ channel) :
    settings rule.output channel (rule.setup start isSetup manager new) =
      if rule.needsReset start.isAbove = true ∧ isSetup = true then
        settings rule.output channel (rule.displacement start.time (some start.channel) start.before new)
      else [] := by
  unfold setup
  by_cases hreset : rule.needsReset start.isAbove = true
  · rw [if_pos hreset, settings_append, settings_append, settings_fallback _ hmanager,
      settings_controllerEvents_of_ne (.inr hchannel), List.append_nil, List.append_nil]
    by_cases hsetup : isSetup = true
    · rw [if_pos hsetup, if_pos ⟨hreset, hsetup⟩]
    · rw [if_neg hsetup, if_neg fun h => hsetup h.2]
      rfl
  · rw [if_neg hreset, if_neg fun h => hreset h.1]
    rfl

end Rule

/-- Whether an operation brings a message or carries out those that wait. -/
def Operation.isBriefing : Operation → Bool
  | .beginBlock | .takeMessages | .apply _ | .post _ => true
  | _ => false

namespace Engine

variable {hand : List Channel} {channel : Channel} {engine origin : Engine} {i j : RuleIndex} {note : Note}

/-! ### Rules with an output of their own -/

/-- A rule's output can be sent and is no other rule's, and no rule learns its input. -/
structure SoleOutput (engine : Engine) (i : RuleIndex) : Prop where
  input_ne : ∀ j, (engine.rule j).input ≠ .learn
  isSendable : (engine.rule i).output.IsSendable
  output_ne : ∀ j, j ≠ i → (engine.rule j).output ≠ (engine.rule i).output

theorem SoleOutput.settings_setupEvents (h : engine.SoleOutput i) (start : NoteStart) (isSetup : Bool) :
    settings (engine.rule i).output channel (engine.setupEvents start isSetup) =
      settings (engine.rule i).output channel
        ((engine.rule i).setup start isSetup engine.manager engine.voices.roles) := by
  refine settings_flatMap.trans (flatMap_eq_of_unique (List.nodup_finRange _) (List.mem_finRange i) ?_)
  intro j _ hj
  exact Rule.settings_setup_of_ne (h.output_ne j hj)

theorem SoleOutput.settings_startEvents (h : engine.SoleOutput i) (time : Float) (own : Channel) (note : Note)
    (velocity : UInt8) (hmanager : engine.manager ≠ channel) (hown : own ≠ channel) :
    settings (engine.rule i).output channel (engine.startEvents time own note velocity) =
      if (engine.rule i).needsReset (engine.isAbove note) then
        settings (engine.rule i).output channel ((engine.rule i).displacement time (some own) engine.voices.roles
          (engine.withVoice own note velocity).voices.roles)
      else [] := by
  have hsole : (engine.withVoice own note velocity).SoleOutput i := ⟨h.input_ne, h.isSendable, h.output_ne⟩
  have hsetup : ∀ isSetup, settings (engine.rule i).output channel
      ((engine.withVoice own note velocity).setupEvents (engine.noteStart time own note) isSetup) = _ :=
    fun isSetup => (hsole.settings_setupEvents _ isSetup).trans (Rule.settings_setup_other hmanager hown)
  have hbehind : settings (engine.rule i).output channel
      ((engine.withVoice own note velocity).setupEvents (engine.noteStart time own note) false) = [] :=
    (hsetup false).trans (if_neg fun h => Bool.false_ne_true h.2)
  unfold startEvents
  rw [← List.singleton_append, settings_append, settings_append, settings_noteEvent (.inl rfl), hbehind,
    hsetup true, List.append_nil, List.append_nil]
  by_cases hreset : (engine.rule i).needsReset (engine.isAbove note) = true
  · rw [if_pos hreset]
    exact if_pos ⟨hreset, rfl⟩
  · rw [if_neg hreset]
    exact if_neg fun h => hreset h.1

theorem SoleOutput.carries_startEvents (h : engine.SoleOutput i) (time : Float) (velocity : UInt8)
    (hmanager : engine.manager ≠ channel) (hreset : (engine.rule i).needsReset (engine.isAbove note) = true)
    (earlier : List Event) : Carries (engine.rule i).output channel
      (earlier ++ engine.startEvents time channel note velocity) (engine.rule i).resetValue := by
  have hsole : (engine.withVoice channel note velocity).SoleOutput i := ⟨h.input_ne, h.isSendable, h.output_ne⟩
  have hsetup : settings (engine.rule i).output channel
      ((engine.withVoice channel note velocity).setupEvents (engine.noteStart time channel note) false) =
      controllerEvents time channel (engine.rule i).output (engine.rule i).resetValue false := by
    refine (hsole.settings_setupEvents _ false).trans ?_
    exact Rule.settings_setup_own (engine.noteStart time channel note) hreset hmanager
  unfold startEvents
  rw [← List.singleton_append, ← List.append_assoc, ← List.append_assoc]
  exact carries_append h.isSendable hsetup

theorem SoleOutput.settings_stopEvents (h : engine.SoleOutput i) (time : Float) (own : Channel) (note : Note)
    (velocity : UInt8) : settings (engine.rule i).output channel (engine.stopEvents time own note velocity) =
      if (engine.rule i).needsReset (engine.isAbove note) then
        settings (engine.rule i).output channel
          ((engine.rule i).displacement time none (engine.voices.stop note).roles engine.voices.roles)
      else [] := by
  unfold stopEvents
  rw [← List.singleton_append, settings_append, settings_noteEvent (.inr rfl), List.nil_append, settings_flatMap]
  refine (flatMap_eq_of_unique (List.nodup_finRange _) (List.mem_finRange i) fun j _ hj => ?_).trans ?_
  · split
    · exact Rule.settings_displacement_of_ne (h.output_ne j hj)
    · rfl
  · split
    · rfl
    · rfl

theorem SoleOutput.settings_routeEvents_of_ne (h : engine.SoleOutput i) (hj : j ≠ i) (time value : Float) :
    settings (engine.rule i).output channel (engine.routeEvents time value j) = [] := by
  refine settings_flatMap.trans (List.flatMap_eq_nil_iff.mpr fun other _ => ?_)
  exact settings_controllerEvents_of_ne (.inl (h.output_ne j hj))

/-- While a note is held, a rule's output goes to its target. -/
theorem outputChannels_eq (hnote : note ∈ engine.voices.held.notes) (rule : Rule) :
    engine.outputChannels rule = engine.voices.targets engine.manager rule.target := by
  refine if_neg fun hempty => ?_
  rw [Bool.and_eq_true, NoteStack.isEmpty_iff] at hempty
  rw [hempty.1] at hnote
  exact List.not_mem_nil hnote

/-! ### Channels of notes and of the manager -/

theorem manager_not_mem_members (zone : Zone) : zone.manager ∉ zone.members := by
  intro hmem
  obtain ⟨place, -, hplace⟩ := List.mem_map.mp hmem
  have hlt := place.isLt
  have hcount := zone.memberCount_le
  have hval := congrArg Fin.val hplace
  simp only [memberMax] at hcount
  unfold Zone.member Zone.manager at hval
  cases hside : zone.side with
  | lower =>
      simp only [hside, ZoneSide.manager] at hval
      omega
  | upper =>
      simp only [hside, ZoneSide.manager] at hval
      omega

theorem Balanced.channelOf_mem_members (h : Balanced (hand, engine)) (hnote : note ∈ engine.voices.held.notes) :
    engine.voices.channelOf note ∈ engine.layout.zone.members :=
  h.perm.mem_iff.mp (List.mem_append_right _ (List.mem_append_right _ (List.mem_map_of_mem hnote)))

theorem Balanced.manager_ne_channelOf (h : Balanced (hand, engine)) (hnote : note ∈ engine.voices.held.notes) :
    engine.manager ≠ engine.voices.channelOf note :=
  fun heq => manager_not_mem_members _ (heq ▸ h.channelOf_mem_members hnote)

theorem Balanced.manager_ne (h : Balanced (channel :: hand, engine)) : engine.manager ≠ channel :=
  fun heq => manager_not_mem_members _ (heq ▸ h.mem_members)

theorem Balanced.mem_of_holder? (h : Balanced (hand, engine)) {region : Region} {role : Role}
    (hholder : engine.voices.holder? region role = some note) : note ∈ engine.voices.held.notes :=
  h.coherent.mem_of_holder? hholder

/-- The channel kept for a role is a held note's exactly if the note has the role. -/
theorem Balanced.channel?_eq_iff (h : Balanced (hand, engine)) (hnote : note ∈ engine.voices.held.notes)
    (region : Region) (role : Role) :
    engine.voices.roles.channel? region role = some (engine.voices.channelOf note) ↔
      engine.voices.holder? region role = some note := by
  rw [h.coherent.channel?_eq, Option.map_eq_some_iff]
  constructor
  · rintro ⟨other, hother, hchannel⟩
    have hmem := h.mem_of_holder? hother
    rw [← h.channelOf_injective hmem hnote hchannel]
    exact hother
  · exact fun hholder => ⟨note, hholder, rfl⟩

/-! ### Runs in which no parameter changes -/

/-- Whether two engines have the same parameters, whatever their rules remember. -/
def SameSettings (origin engine : Engine) : Prop := ∀ id, engine.parameters.get id = origin.parameters.get id

/-- Whether no operation of a run leaves a parameter changed. -/
def Steady (engine : Engine) (operations : List Operation) : Prop :=
  ∀ earlier, earlier <+: operations → engine.SameSettings (engine.run earlier)

namespace SameSettings

theorem get_rule (h : origin.SameSettings engine) (i : RuleIndex) (parameter : RuleParameter) :
    (engine.rule i).get parameter = (origin.rule i).get parameter :=
  h (.rule i parameter)

theorem input (h : origin.SameSettings engine) (i : RuleIndex) :
    (engine.rule i).input = (origin.rule i).input := by
  unfold Rule.input
  rw [h.get_rule]

theorem output (h : origin.SameSettings engine) (i : RuleIndex) :
    (engine.rule i).output = (origin.rule i).output := by
  unfold Rule.output
  rw [h.get_rule]

theorem target (h : origin.SameSettings engine) (i : RuleIndex) :
    (engine.rule i).target = (origin.rule i).target := by
  unfold Rule.target
  rw [h.get_rule]

theorem resetPolicy (h : origin.SameSettings engine) (i : RuleIndex) :
    (engine.rule i).resetPolicy = (origin.rule i).resetPolicy := by
  unfold Rule.resetPolicy
  rw [h.get_rule]

theorem shape (h : origin.SameSettings engine) (i : RuleIndex) :
    (engine.rule i).shape = (origin.rule i).shape := by
  unfold Rule.shape Rule.curve
  rw [h.get_rule i .curve, h.get_rule i .level, h.get_rule i .midpoint, h.get_rule i .invert]

theorem soleOutput (h : origin.SameSettings engine) (hsole : origin.SoleOutput i) : engine.SoleOutput i where
  input_ne j := by
    rw [h.input]
    exact hsole.input_ne j
  isSendable := by
    rw [h.output]
    exact hsole.isSendable
  output_ne j hj := by
    rw [h.output, h.output]
    exact hsole.output_ne j hj

theorem withInput (h : origin.SameSettings engine) (hlearn : ∀ j, (origin.rule j).input ≠ .learn)
    (controller : ControllerId) (value : Float) (j : RuleIndex) :
    origin.SameSettings (engine.withInput controller value j) := by
  intro id
  refine (engine.get_withInput controller value j fun k _ => ?_).trans (h id)
  rw [h.input]
  exact hlearn k

theorem act {before after : Moment} (h : origin.SameSettings before.2)
    (hlearn : ∀ j, (origin.rule j).input ≠ .learn) (hact : Act before after) : origin.SameSettings after.2 := by
  intro id
  refine (hact.get_eq fun j _ => ?_).trans (h id)
  rw [h.input]
  exact hlearn j

end SameSettings

theorem Steady.sameSettings {operation : Operation} {operations : List Operation}
    (h : engine.Steady (operation :: operations)) : engine.SameSettings (engine.perform operation) :=
  h [operation] ⟨operations, rfl⟩

theorem Steady.tail {operation : Operation} {operations : List Operation}
    (h : engine.Steady (operation :: operations)) : (engine.perform operation).Steady operations := by
  intro earlier hearlier id
  have hrun := h (operation :: earlier) (List.cons_prefix_cons.mpr ⟨rfl, hearlier⟩) id
  exact hrun.trans (h.sameSettings id).symm

theorem parameters_silence (engine : Engine) : engine.silence.parameters = engine.parameters := by
  have hnotes : ∀ (notes : List Note) (e : Engine), (notes.foldl silenceNote e).parameters = e.parameters := by
    intro notes e
    refine List.foldlRecOn _ _ (motive := fun last : Engine => last.parameters = e.parameters) rfl ?_
    intro last hlast note _
    exact (last.parameters_silenceNote note).trans hlast
  unfold silence
  dsimp only
  split
  · exact hnotes _ engine
  · refine (hnotes _ _).trans ?_
    rw [sendController_eq]
    rfl

theorem get_announceZone_resetRules (engine : Engine) (id : ParameterId) :
    engine.announceZone.resetRules.parameters.get id = engine.parameters.get id := by
  obtain ⟨parameters, sent, heq, hget, -⟩ := engine.announceZone_resetRules_eq
  rw [heq]
  exact hget id

theorem get_applyLayout (engine : Engine) (id : ParameterId) :
    engine.applyLayout.parameters.get id = engine.parameters.get id := by
  have hmoved : ∀ (e : Engine) (layout : ZoneLayout) (published : Published),
      (refillChannels { e with layout, published }).announceZone.resetRules.parameters.get id =
        e.parameters.get id :=
    fun e layout published => get_announceZone_resetRules (refillChannels { e with layout, published }) id
  unfold applyLayout
  dsimp only
  rw [hmoved, parameters_silence]
  rfl

theorem get_openBlock (engine : Engine) (id : ParameterId) :
    engine.openBlock.parameters.get id = engine.parameters.get id := by
  cases h : engine.isSuspended with
  | true =>
      rw [openBlock_of_isSuspended h]
      rfl
  | false =>
      cases hstale : engine.isLayoutStale with
      | true =>
          rw [openBlock_of_isLayoutStale h hstale]
          dsimp only
          exact engine.get_applyLayout id
      | false =>
          rw [openBlock_of_current h hstale]
          split
          · rfl
          · rfl

/-- If an operation leaves no parameter changed, its messages do not either. -/
theorem SameSettings.briefed (h : origin.SameSettings engine) {operation : Operation}
    (hperform : origin.SameSettings (engine.perform operation)) :
    origin.SameSettings (engine.briefed operation) := by
  cases operation with
  | beginBlock =>
      intro id
      have hopen := hperform id
      rw [show engine.perform .beginBlock = _ from engine.beginBlock_eq, get_openBlock] at hopen
      exact hopen
  | apply message => exact hperform
  | post message => exact hperform
  | takeMessages => exact hperform
  | _ => exact h

/-- Without messages and rules that learn no parameter changes. -/
theorem SameSettings.perform (h : origin.SameSettings engine) (hbalanced : Balanced ([], engine))
    (hlearn : ∀ j, (origin.rule j).input ≠ .learn) {operation : Operation}
    (hbriefed : ∀ e, Engine.briefed e operation = e) :
    origin.SameSettings (engine.perform operation) := by
  let P : Moment → Prop := fun moment => origin.SameSettings moment.2
  have hstart : P ([], engine.clearEvents.briefed operation) := by
    rw [hbriefed]
    exact h
  have hlast : P ([], engine.clearEvents.perform operation) :=
    perform_preserves (fun hact _ hP => hP.act hlearn hact) hbalanced.clearEvents rfl operation hstart
  obtain ⟨kept, hkept⟩ := engine.perform_eq operation
  rw [hkept]
  exact hlast

theorem steady_of_briefed (hbalanced : Balanced ([], engine)) (hlearn : ∀ j, (engine.rule j).input ≠ .learn)
    {operations : List Operation} (hbriefed : ∀ operation ∈ operations, ∀ e, Engine.briefed e operation = e) :
    engine.Steady operations := by
  intro earlier hearlier
  have hrun : Balanced ([], engine.run earlier) ∧ engine.SameSettings (engine.run earlier) := by
    refine List.foldlRecOn earlier Engine.perform
      (motive := fun e => Balanced ([], e) ∧ engine.SameSettings e) ⟨hbalanced, fun _ => rfl⟩ ?_
    intro e he operation hoperation
    exact ⟨he.1.perform operation, he.2.perform he.1 hlearn (hbriefed operation (hearlier.mem hoperation))⟩
  exact hrun.2

theorem steady_of_not_isBriefing (hbalanced : Balanced ([], engine)) (hlearn : ∀ j, (engine.rule j).input ≠ .learn)
    {operations : List Operation} (h : ∀ operation ∈ operations, operation.isBriefing = false) :
    engine.Steady operations := by
  refine steady_of_briefed hbalanced hlearn fun operation hoperation e => ?_
  have hquiet := h operation hoperation
  cases operation with
  | beginBlock | takeMessages | apply message | post message => cases hquiet
  | _ => rfl

end Engine

end PolyExpression
