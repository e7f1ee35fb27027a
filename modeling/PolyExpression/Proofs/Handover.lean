import PolyExpression.Proofs.LastSent

/-!
Rules that target the note with a role. Main statements: when a note starts or ends, what had been sent to the
note with the role stays the last thing sent to it if it keeps the role, and all other held notes are left with
the initial value; an input goes to the note with the role alone.
-/

namespace PolyExpression

open Midi (Event)

namespace Engine

variable {hand : List Channel} {channel : Channel} {origin engine after : Engine} {i : RuleIndex}
  {region : Region} {role : Role} {note : Note} {log sent : List Event} {heard : Option Float}

/-- A rule with an output of its own targets the note with a role, and resets channels to its initial value. -/
structure TakesRole (engine : Engine) (i : RuleIndex) (region : Region) (role : Role) : Prop
    extends SoleOutput engine i where
  target : (engine.rule i).target = .voice region role
  resetPolicy : (engine.rule i).resetPolicy = .initial

/-- The initial value of a rule. -/
def initialInput (engine : Engine) (i : RuleIndex) : Float := ((engine.rule i).get .initialValue).ratio

theorem SameSettings.initialInput (h : origin.SameSettings engine) (i : RuleIndex) :
    engine.initialInput i = origin.initialInput i :=
  congrArg Parameter.ratio (h.get_rule i .initialValue)

namespace TakesRole

theorem needsReset (h : engine.TakesRole i region role) (isAbove : Bool) :
    (engine.rule i).needsReset isAbove = true := by
  unfold Rule.needsReset
  rw [h.target, h.resetPolicy]
  rfl

theorem resetValue (h : engine.TakesRole i region role) :
    (engine.rule i).resetValue = (engine.rule i).shape (engine.initialInput i) := by
  unfold Rule.resetValue
  rw [h.target, h.resetPolicy]
  rfl

theorem sameSettings (h : origin.TakesRole i region role) (hsame : origin.SameSettings engine) :
    engine.TakesRole i region role where
  toSoleOutput := hsame.soleOutput h.toSoleOutput
  target := (hsame.target i).trans h.target
  resetPolicy := (hsame.resetPolicy i).trans h.resetPolicy

end TakesRole

/-- The note with a role has been sent the value it has heard, and every other held note the initial value. -/
def Isolated (origin : Engine) (i : RuleIndex) (region : Region) (role : Role) (heard : Option Float)
    (log : List Event) (engine : Engine) : Prop :=
  ∀ note ∈ engine.voices.held.notes,
    Carries (origin.rule i).output (engine.voices.channelOf note) log ((origin.rule i).shape
      (if engine.voices.holder? region role = some note then heard.getD (origin.initialInput i)
        else origin.initialInput i))

/-- What the note with a role has heard after a change: the same as before if it has kept the role, and nothing
otherwise. -/
def kept (region : Region) (role : Role) (before after : Engine) (heard : Option Float) : Option Float :=
  if after.voices.holder? region role = before.voices.holder? region role then heard else none

theorem kept_of_eq (h : after.voices.holder? region role = engine.voices.holder? region role) :
    kept region role engine after heard = heard :=
  if_pos h

theorem kept_of_ne (h : after.voices.holder? region role ≠ engine.voices.holder? region role) :
    kept region role engine after heard = none :=
  if_neg h

theorem kept_congr (h : engine.voices = origin.voices) :
    kept region role engine after heard = kept region role origin after heard := by
  rw [kept, h]
  rfl

namespace Isolated

theorem congr (h : Isolated origin i region role heard log engine) (hvoices : after.voices = engine.voices) :
    Isolated origin i region role heard log after := by
  intro note hnote
  rw [hvoices] at hnote ⊢
  exact h note hnote

/-- Nothing changes for notes that stay while nobody is sent the rule's output. -/
theorem send (h : Isolated origin i region role heard log engine) (hvoices : after.voices = engine.voices)
    (hsent : ∀ note ∈ engine.voices.held.notes,
      settings (origin.rule i).output (engine.voices.channelOf note) sent = []) :
    Isolated origin i region role heard (log ++ sent) after := by
  intro note hnote
  rw [hvoices] at hnote ⊢
  exact (h note hnote).append (hsent note hnote)

/-- A note that stays, and is reset if it has just lost the role. -/
theorem carries_kept (h : Isolated origin i region role heard log engine)
    (hrole : origin.TakesRole i region role) (hnote : note ∈ engine.voices.held.notes) {P : Prop} [Decidable P]
    {time : Float}
    (hkept : after.voices.holder? region role = engine.voices.holder? region role → ¬P)
    (hlost : after.voices.holder? region role ≠ engine.voices.holder? region role →
      engine.voices.holder? region role = some note → P)
    (hsent : settings (origin.rule i).output (engine.voices.channelOf note) sent =
      if P then
        controllerEvents time (engine.voices.channelOf note) (origin.rule i).output
          ((origin.rule i).shape (origin.initialInput i)) false
      else []) :
    Carries (origin.rule i).output (engine.voices.channelOf note) (log ++ sent) ((origin.rule i).shape
      (if after.voices.holder? region role = some note then
        (kept region role engine after heard).getD (origin.initialInput i)
        else origin.initialInput i)) := by
  have hbefore := h note hnote
  unfold kept
  by_cases hsame : after.voices.holder? region role = engine.voices.holder? region role
  · rw [if_neg (hkept hsame)] at hsent
    rw [if_pos hsame, hsame]
    exact hbefore.append hsent
  · rw [if_neg hsame, Option.getD_none, ite_self]
    by_cases hreset : P
    · rw [if_pos hreset] at hsent
      exact carries_append hrole.isSendable hsent
    · rw [if_neg hreset] at hsent
      rw [if_neg fun hholder => hreset (hlost hsame hholder)] at hbefore
      exact hbefore.append hsent

theorem start (h : Isolated origin i region role heard log engine) (hrole : origin.TakesRole i region role)
    (hsame : origin.SameSettings engine) (hbalanced : Balanced (channel :: hand, engine))
    (hnote : note ∉ engine.voices.held.notes) (time : Float) (velocity : UInt8) :
    Isolated origin i region role
      (kept region role engine (engine.startNote time channel note velocity) heard)
      (log ++ engine.startEvents time channel note velocity) (engine.startNote time channel note velocity) := by
  have hnow := hrole.sameSettings hsame
  have hvoices := engine.voices_startNote time channel note velocity
  have hafter := hbalanced.start time velocity hnote
  have hreset : (engine.rule i).resetValue = (origin.rule i).shape (origin.initialInput i) := by
    rw [hnow.resetValue, hsame.shape, hsame.initialInput]
  intro other hother
  have hmem := hother
  rw [hvoices, Voices.held_start, List.erase_of_not_mem hnote] at hmem
  -- The setup sends the new note the initial value, and another note only if it loses the role.
  rcases List.mem_cons.mp hmem with rfl | hmem
  · have hchannel : (engine.startNote time channel other velocity).voices.channelOf other = channel := by
      rw [hvoices, Voices.channelOf_start, if_pos rfl]
    have hnew : engine.voices.holder? region role ≠ some other :=
      fun hholder => hnote (hbalanced.mem_of_holder? hholder)
    have hvalue : (if (engine.startNote time channel other velocity).voices.holder? region role = some other then
        (kept region role engine (engine.startNote time channel other velocity) heard).getD
          (origin.initialInput i)
        else origin.initialInput i) = origin.initialInput i := by
      split
      · rename_i hholder
        rw [kept_of_ne fun hkept => hnew (hkept.symm.trans hholder)]
        rfl
      · rfl
    rw [hvalue, hchannel, ← hreset, ← hsame.output]
    exact hnow.carries_startEvents time velocity hbalanced.manager_ne (hnow.needsReset _) log
  · have hne : note ≠ other := fun heq => hnote (heq ▸ hmem)
    have hchannel : (engine.startNote time channel note velocity).voices.channelOf other =
        engine.voices.channelOf other := by
      rw [hvoices, Voices.channelOf_start, if_neg hne]
    have hown : channel ≠ engine.voices.channelOf other :=
      fun heq => hbalanced.not_mem_held (heq ▸ List.mem_map_of_mem hmem)
    have hbefore := hbalanced.channel?_eq_iff hmem region role
    have hlater := hafter.channel?_eq_iff hother region role
    have hsent := hnow.settings_startEvents time channel note velocity (hbalanced.manager_ne_channelOf hmem) hown
    rw [if_pos (hnow.needsReset _), Rule.settings_displacement hnow.target, hsame.output, hreset] at hsent
    rw [hchannel] at hlater ⊢
    have hroles : (engine.withVoice channel note velocity).voices.roles =
        (engine.startNote time channel note velocity).voices.roles := congrArg Voices.roles hvoices.symm
    rw [hroles] at hsent
    refine h.carries_kept hrole hmem (fun hkept hcond => ?_) (fun hchange hholder => ?_) hsent
    · exact hcond.2.1 (hlater.mpr (hkept.trans (hbefore.mp hcond.1)))
    · refine ⟨hbefore.mpr hholder, fun hstill => hchange ?_, fun heq => hown (Option.some.inj heq)⟩
      exact (hlater.mp hstill).trans hholder.symm

theorem stop (h : Isolated origin i region role heard log engine) (hrole : origin.TakesRole i region role)
    (hsame : origin.SameSettings engine) (hbalanced : Balanced (hand, engine))
    (hnote : note ∈ engine.voices.held.notes) (time : Float) (velocity : UInt8) :
    Isolated origin i region role
      (kept region role engine (engine.stopNote time (engine.voices.channelOf note) note velocity) heard)
      (log ++ engine.stopEvents time (engine.voices.channelOf note) note velocity)
      (engine.stopNote time (engine.voices.channelOf note) note velocity) := by
  have hnow := hrole.sameSettings hsame
  have hvoices := engine.voices_stopNote time (engine.voices.channelOf note) note velocity
  have hafter := hbalanced.stop time velocity hnote
  have hreset : (engine.rule i).resetValue = (origin.rule i).shape (origin.initialInput i) := by
    rw [hnow.resetValue, hsame.shape, hsame.initialInput]
  intro other hother
  have hmem := hother
  rw [hvoices, Voices.held_stop] at hmem
  obtain ⟨hne, hmem⟩ := engine.voices.held.nodup.mem_erase_iff.mp hmem
  have hchannel : (engine.stopNote time (engine.voices.channelOf note) note velocity).voices.channelOf other =
      engine.voices.channelOf other := by
    rw [hvoices]
    rfl
  have hbefore := hbalanced.channel?_eq_iff hmem region role
  have hlater := hafter.channel?_eq_iff hother region role
  have hsent : settings (engine.rule i).output (engine.voices.channelOf other)
      (engine.stopEvents time (engine.voices.channelOf note) note velocity) = _ :=
    hnow.settings_stopEvents time (engine.voices.channelOf note) note velocity
  have hroles : (engine.voices.stop note).roles =
      (engine.stopNote time (engine.voices.channelOf note) note velocity).voices.roles :=
    congrArg Voices.roles hvoices.symm
  rw [if_pos (hnow.needsReset _), Rule.settings_displacement hnow.target, hsame.output, hreset, hroles] at hsent
  rw [hchannel] at hlater ⊢
  refine h.carries_kept hrole hmem (fun hkept hcond => ?_) (fun hchange hholder => ?_) hsent
  · exact hcond.2.1 (hbefore.mpr (hkept.symm.trans (hlater.mp hcond.1)))
  · refine absurd ?_ hchange
    rw [hvoices]
    refine Voices.holder?_stop fun hstopped => hne ?_
    exact Option.some.inj (hholder.symm.trans hstopped)

/-- An input goes to the note with the role. -/
theorem route (h : Isolated origin i region role heard log engine) (hrole : origin.TakesRole i region role)
    (hsame : origin.SameSettings engine) (hbalanced : Balanced (hand, engine)) (time : Float)
    (controller : ControllerId) (value : Float) :
    Isolated origin i region role (some value)
      (log ++ (engine.withInput controller value i).routeEvents time value i)
      (routeRule time controller value engine i) := by
  have hsameAfter := hsame.withInput hrole.input_ne controller value i
  have hnow := hrole.sameSettings hsameAfter
  have hvoices : (engine.withInput controller value i).voices = engine.voices := by
    obtain ⟨parameters, published, hinput⟩ := engine.withInput_frame controller value i
    rw [hinput]
  intro note hnote
  rw [routeRule_eq] at hnote ⊢
  have hchannels : (engine.withInput controller value i).outputChannels
      ((engine.withInput controller value i).rule i) =
        ((engine.voices.holder? region role).map engine.voices.channelOf).toList := by
    have hheld : note ∈ (engine.withInput controller value i).voices.held.notes := hnote
    rw [outputChannels_eq hheld, hnow.target, ← hvoices]
    rfl
  have hmem : note ∈ engine.voices.held.notes := hvoices ▸ hnote
  show Carries _ ((engine.withInput controller value i).voices.channelOf note) _ ((origin.rule i).shape
    (if (engine.withInput controller value i).voices.holder? region role = some note then value
      else origin.initialInput i))
  unfold routeEvents
  rw [hvoices, hchannels, hsameAfter.output, hsameAfter.shape]
  by_cases hholder : engine.voices.holder? region role = some note
  · rw [if_pos hholder, hholder]
    exact carries_append hrole.isSendable (settings_controllers (List.nodup_singleton _) List.mem_cons_self)
  · have hbefore := h note hmem
    rw [if_neg hholder] at hbefore ⊢
    refine hbefore.append (settings_controllers_of_not_mem fun hchannel => hholder ?_)
    obtain ⟨other, hother, hsame⟩ := Option.map_eq_some_iff.mp (Option.mem_toList.mp hchannel)
    rw [← hbalanced.channelOf_injective (hbalanced.mem_of_holder? hother) hmem hsame]
    exact hother

/-- What other rules send makes no difference. -/
theorem route_other (h : Isolated origin i region role heard log engine)
    (hrole : origin.TakesRole i region role) (hsame : origin.SameSettings engine) {j : RuleIndex} (hj : j ≠ i)
    (time : Float) (controller : ControllerId) (value : Float) : Isolated origin i region role heard
      (log ++ (engine.withInput controller value j).routeEvents time value j)
      (routeRule time controller value engine j) := by
  have hsameAfter := hsame.withInput hrole.input_ne controller value j
  refine h.send (voices_routeRule time controller value engine j) fun note _ => ?_
  rw [← hsameAfter.output]
  exact (hsameAfter.soleOutput hrole.toSoleOutput).settings_routeEvents_of_ne hj time value

/-- A note that takes the channel of another one leaves the role to the same note as before, unless that is the
one that ends. -/
theorem replace (h : Isolated origin i region role heard log engine) (hrole : origin.TakesRole i region role)
    (hsame : origin.SameSettings engine) (hbalanced : Balanced (hand, engine)) {old new : Note}
    (hold : old ∈ engine.voices.held.notes) (hnew : new ∉ engine.voices.held.notes.erase old) (time : Float)
    (velocity : UInt8) {stopped : Engine}
    (hstop : engine.stopNote time (engine.voices.channelOf old) old Midi.defaultVelocity = stopped) :
    Isolated origin i region role
      (if engine.voices.holder? region role = some old then none
        else kept region role engine (engine.replaceNote time old new velocity) heard)
      (log ++ (engine.stopEvents time (engine.voices.channelOf old) old Midi.defaultVelocity
        ++ stopped.startEvents time (engine.voices.channelOf old) new velocity))
      (engine.replaceNote time old new velocity) := by
  have hisolated := h.stop hrole hsame hbalanced hold time Midi.defaultVelocity
  have hbalancedStopped := hbalanced.stop time Midi.defaultVelocity hold
  have hvoices := engine.voices_stopNote time (engine.voices.channelOf old) old Midi.defaultVelocity
  have hparameters := engine.parameters_stopNote time (engine.voices.channelOf old) old Midi.defaultVelocity
  have hreplace : engine.replaceNote time old new velocity =
      (engine.stopNote time (engine.voices.channelOf old) old Midi.defaultVelocity).startNote time
        (engine.voices.channelOf old) new velocity := rfl
  rw [hstop] at hisolated hbalancedStopped hvoices hparameters hreplace
  have hsameStopped : origin.SameSettings stopped := by
    intro id
    rw [hparameters]
    exact hsame id
  have hheld : stopped.voices.held.notes = engine.voices.held.notes.erase old := by
    rw [hvoices, Voices.held_stop]
  have hnot : new ∉ stopped.voices.held.notes := hheld ▸ hnew
  have hstart := hisolated.start hrole hsameStopped hbalancedStopped hnot time velocity
  rw [← hreplace] at hstart
  rw [← List.append_assoc]
  -- If the note that ends had the role, the note that has it when the other one starts has heard nothing yet.
  by_cases hholder : engine.voices.holder? region role = some old
  · have hended : stopped.voices.holder? region role ≠ some old := fun hstill =>
      engine.voices.held.nodup.not_mem_erase (hheld ▸ hbalancedStopped.mem_of_holder? hstill)
    have hnone : kept region role engine stopped heard = none :=
      kept_of_ne fun hstill => hended (hstill.trans hholder)
    rw [hnone, show kept region role stopped _ none = none from ite_self none] at hstart
    rw [if_pos hholder]
    exact hstart
  · have hstays : stopped.voices.holder? region role = engine.voices.holder? region role := by
      rw [hvoices]
      exact Voices.holder?_stop hholder
    rw [kept_of_eq hstays, kept, hstays] at hstart
    rw [if_neg hholder]
    exact hstart

end Isolated

end Engine

end PolyExpression
