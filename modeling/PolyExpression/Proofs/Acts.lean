import Mathlib.Data.List.Nodup
import Mathlib.Logic.Relation
import PolyExpression.Proofs.Coherence
import PolyExpression.Proofs.Output
import PolyExpression.Proofs.Queue

/-!
Operations as sequences of acts. Between two acts of an operation some channels may be in hand: taken from
the free ones or from a note, and not yet given to a note or put back. Main statement: every act keeps the
account of the channels balanced.
-/

namespace PolyExpression

open Midi (Event)

/-- Whether an event starts or ends a note. -/
def Midi.Event.isNote (event : Event) : Bool := event.command == .noteOn || event.command == .noteOff

theorem Midi.Event.SetsController.isNote {event : Event} (h : event.SetsController) : event.isNote = false := by
  obtain ⟨time, channel, controller, value, isSetup, h⟩ := h
  unfold controllerEvents controllerEvent? at h
  dsimp only at h
  split at h
  · obtain rfl := List.mem_singleton.mp h
    rfl
  · split at h
    · obtain rfl := List.mem_singleton.mp h
      rfl
    · obtain ⟨number, -, rfl⟩ := Option.map_eq_some_iff.mp (Option.mem_toList.mp h)
      rfl

theorem isNote_controllerEvents {time : Float} {channel : Channel} {controller : ControllerId} {value : Float}
    {isSetup : Bool} {event : Event} (h : event ∈ controllerEvents time channel controller value isSetup) :
    event.isNote = false :=
  (setsController_of_mem h).isNote

namespace Voices

/-- The channels of the held notes, newest first. -/
def heldChannels (voices : Voices) : List Channel := voices.held.notes.map voices.channelOf

theorem heldChannels_start {voices : Voices} {note : Note} (hnote : note ∉ voices.held.notes)
    (channel : Channel) (velocity : UInt8) (isAbove : Bool) :
    (voices.start note channel velocity isAbove).heldChannels = channel :: voices.heldChannels := by
  have hothers : voices.held.notes.map (voices.start note channel velocity isAbove).channelOf =
      voices.held.notes.map voices.channelOf := by
    refine List.map_congr_left fun other hother => ?_
    have hne : note ≠ other := fun h => hnote (h ▸ hother)
    rw [channelOf_start, if_neg hne]
  unfold heldChannels
  rw [held_start, List.erase_of_not_mem hnote, List.map_cons, channelOf_start, if_pos rfl, hothers]

theorem heldChannels_stop {voices : Voices} {note : Note} (hnote : note ∈ voices.held.notes) :
    voices.heldChannels.Perm (voices.channelOf note :: (voices.stop note).heldChannels) := by
  unfold heldChannels
  rw [held_stop, channelOf_stop, ← List.map_cons]
  exact (List.perm_cons_erase hnote).map voices.channelOf

end Voices

theorem channelByte_injective : Function.Injective fun channel : Channel => channel.val.toUInt8 := by
  intro a b h
  have ha := a.isLt
  have hb := b.isLt
  have hbyte : ∀ n : Nat, n < 16 → n.toUInt8.toNat = n := fun n hn => Nat.mod_eq_of_lt (by omega)
  have hval := congrArg UInt8.toNat h
  rw [hbyte a.val ha, hbyte b.val hb] at hval
  exact Fin.ext hval

theorem Zone.member_injective (zone : Zone) : Function.Injective zone.member := by
  intro a b h
  have ha := a.isLt
  have hb := b.isLt
  have hcount := zone.memberCount_le
  simp only [memberMax] at hcount
  have hval := congrArg Fin.val h
  apply Fin.ext
  unfold member at hval
  cases hside : zone.side with
  | lower =>
      simp only [hside] at hval
      omega
  | upper =>
      simp only [hside] at hval
      omega

theorem Zone.nodup_members (zone : Zone) : zone.members.Nodup :=
  (List.nodup_finRange _).map zone.member_injective

namespace Engine

/-- A point inside an operation: the channels in hand, and the engine. -/
abbrev Moment := List Channel × Engine

/-- The channels in hand, the free channels and those of the held notes are the members of the zone, each
once; only held notes wait for their release. -/
structure Balanced (moment : Moment) : Prop where
  coherent : moment.2.voices.Coherent moment.2.layout
  perm : (moment.1 ++ (moment.2.free.toList ++ moment.2.voices.heldChannels)).Perm moment.2.layout.zone.members
  deferred : ∀ note ∈ moment.2.pedal.deferred.notes, note ∈ moment.2.voices.held.notes

/-- Nothing changes but what neither notes nor rules depend on. -/
structure Quiet (before after : Engine) : Prop where
  voices : after.voices = before.voices
  layout : after.layout = before.layout
  parameters : after.parameters = before.parameters
  free : after.free = before.free
  deferred : after.pedal.deferred = before.pedal.deferred
  events : after.events = before.events

/-- With no note held, the voices are emptied and all channels of a zone are free; rules forget their inputs
and only controllers are sent. -/
structure Restarted (before after : Engine) : Prop where
  held : before.voices.held.notes = []
  voices : after.voices = before.voices.silence
  deferred : after.pedal.deferred.notes = []
  free : after.free.toList = after.layout.zone.members
  parameters : ∀ id, after.parameters.get id = before.parameters.get id
  events : ∃ sent, after.events.toList = before.events.toList ++ sent ∧ ∀ event ∈ sent, event.isNote = false

/-- The smallest parts of operations. -/
inductive Act : Moment → Moment → Prop where
  | quiet {hand : List Channel} {engine after : Engine} (h : Quiet engine after) :
      Act (hand, engine) (hand, after)
  | hold {hand : List Channel} {engine : Engine} {note : Note} (velocity : UInt8)
      (hnote : note ∈ engine.voices.held.notes) :
      Act (hand, engine) (hand, { engine with pedal := engine.pedal.hold note velocity })
  | take {hand : List Channel} {engine : Engine} {channel : Channel} (h : engine.free.pop.1 = some channel) :
      Act (hand, engine) (channel :: hand, { engine with free := engine.free.pop.2 })
  | give (hand : List Channel) (channel : Channel) (engine : Engine) :
      Act (channel :: hand, engine) (hand, engine.giveBack channel)
  | start {hand : List Channel} {engine : Engine} {note : Note} (time : Float) (channel : Channel)
      (velocity : UInt8) (hnote : note ∉ engine.voices.held.notes) :
      Act (channel :: hand, engine) (hand, engine.startNote time channel note velocity)
  | stop {hand : List Channel} {engine : Engine} {note : Note} (time : Float) (velocity : UInt8)
      (hnote : note ∈ engine.voices.held.notes) :
      Act (hand, engine)
        (engine.voices.channelOf note :: hand, engine.stopNote time (engine.voices.channelOf note) note velocity)
  | silence {hand : List Channel} {engine : Engine} {note : Note} (hnote : note ∈ engine.voices.held.notes) :
      Act (hand, engine) (engine.voices.channelOf note :: hand, engine.silenceNote note)
  | report (hand : List Channel) (engine : Engine) (time : Float) (controller : ControllerId) (value : Float) :
      Act (hand, engine) (hand, engine.sendController time engine.manager controller value false)
  | route (hand : List Channel) (engine : Engine) (time : Float) (controller : ControllerId) (value : Float)
      (i : RuleIndex) : Act (hand, engine) (hand, routeRule time controller value engine i)
  | restart {hand : List Channel} {engine after : Engine} (h : Restarted engine after) :
      Act (hand, engine) ([], after)

/-- Acts one after another. -/
def Acts : Moment → Moment → Prop := Relation.ReflTransGen Act

/-! ### The account of the channels -/

namespace Balanced

variable {hand : List Channel} {channel : Channel} {engine : Engine} {note : Note}

theorem mem_members (h : Balanced (channel :: hand, engine)) : channel ∈ engine.layout.zone.members :=
  h.perm.mem_iff.mp List.mem_cons_self

theorem length_free (h : Balanced (hand, engine)) :
    hand.length + (engine.free.toList.length + engine.voices.held.notes.length) =
      engine.layout.zone.memberCount := by
  have hlength := h.perm.length_eq
  simp only [List.length_append, Voices.heldChannels, List.length_map, Zone.length_members] at hlength
  exact hlength

/-- Channels in hand are no held note's. -/
theorem not_mem_held (h : Balanced (channel :: hand, engine)) : channel ∉ engine.voices.heldChannels := by
  have hnodup := h.perm.nodup_iff.mpr engine.layout.zone.nodup_members
  intro hmem
  exact (List.nodup_cons.mp hnodup).1 (List.mem_append_right _ (List.mem_append_right _ hmem))

theorem nodup_heldChannels (h : Balanced (hand, engine)) : engine.voices.heldChannels.Nodup := by
  have hnodup := h.perm.nodup_iff.mpr engine.layout.zone.nodup_members
  exact (List.nodup_append.mp (List.nodup_append.mp hnodup).2.1).2.1

/-- Held notes on one channel are one note. -/
theorem channelOf_injective (h : Balanced (hand, engine)) {a b : Note} (ha : a ∈ engine.voices.held.notes)
    (hb : b ∈ engine.voices.held.notes) (hchannel : engine.voices.channelOf a = engine.voices.channelOf b) :
    a = b :=
  List.inj_on_of_nodup_map h.nodup_heldChannels ha hb hchannel

theorem giveBack_eq (h : Balanced (channel :: hand, engine)) :
    engine.giveBack channel = { engine with free := (engine.free.push channel).2 } :=
  if_pos ((engine.layout.zone.isMember_iff channel).mpr h.mem_members)

theorem size_free_lt (h : Balanced (channel :: hand, engine)) : engine.free.size < memberMax := by
  have hlength := h.length_free
  have hcount := engine.layout.zone.memberCount_le
  rw [List.length_cons, Ring.length_toList] at hlength
  omega

theorem clearEvents (h : Balanced (hand, engine)) : Balanced (hand, engine.clearEvents) :=
  ⟨h.coherent, h.perm, h.deferred⟩

theorem quiet {after : Engine} (h : Balanced (hand, engine)) (hquiet : Quiet engine after) :
    Balanced (hand, after) where
  coherent := by
    rw [show (hand, after).2.voices = engine.voices from hquiet.voices,
      show (hand, after).2.layout = engine.layout from hquiet.layout]
    exact h.coherent
  perm := by
    simp only [hquiet.voices, hquiet.layout, hquiet.free]
    exact h.perm
  deferred := by
    simp only [hquiet.voices, hquiet.deferred]
    exact h.deferred

theorem hold (h : Balanced (hand, engine)) (velocity : UInt8) (hnote : note ∈ engine.voices.held.notes) :
    Balanced (hand, { engine with pedal := engine.pedal.hold note velocity }) where
  coherent := h.coherent
  perm := h.perm
  deferred := by
    intro other hother
    have hcons : other ∈ note :: engine.pedal.deferred.notes.erase note :=
      engine.pedal.notes_hold note velocity ▸ hother
    rcases List.mem_cons.mp hcons with rfl | hmem
    · exact hnote
    · exact h.deferred other (List.mem_of_mem_erase hmem)

theorem take (h : Balanced (hand, engine)) (hpop : engine.free.pop.1 = some channel) :
    Balanced (channel :: hand, { engine with free := engine.free.pop.2 }) where
  coherent := h.coherent
  perm := by
    have hperm := h.perm
    rw [Ring.toList_of_pop hpop] at hperm
    exact List.perm_middle.symm.trans hperm
  deferred := h.deferred

theorem give (h : Balanced (channel :: hand, engine)) : Balanced (hand, engine.giveBack channel) := by
  rw [h.giveBack_eq]
  refine ⟨h.coherent, ?_, h.deferred⟩
  dsimp only
  rw [(Ring.push_of_lt h.size_free_lt channel).2, List.append_assoc, List.singleton_append]
  exact ((List.perm_middle.append_left hand).trans List.perm_middle).trans h.perm

theorem start (h : Balanced (channel :: hand, engine)) (time : Float) (velocity : UInt8)
    (hnote : note ∉ engine.voices.held.notes) :
    Balanced (hand, engine.startNote time channel note velocity) := by
  rw [startNote_eq]
  refine ⟨h.coherent.start hnote channel velocity, ?_, ?_⟩
  · have hchannels := Voices.heldChannels_start hnote channel velocity (engine.isAbove note)
    have hperm : (hand ++ (engine.free.toList ++ channel :: engine.voices.heldChannels)).Perm
        engine.layout.zone.members :=
      ((List.perm_middle.append_left hand).trans List.perm_middle).trans h.perm
    rw [← hchannels] at hperm
    exact hperm
  · intro other hother
    have hmem := h.deferred other hother
    have hne : other ≠ note := fun heq => hnote (heq ▸ hmem)
    have hheld : other ∈ note :: engine.voices.held.notes.erase note :=
      List.mem_cons_of_mem _ ((List.mem_erase_of_ne hne).mpr hmem)
    rw [← engine.voices.held_start note channel velocity (engine.isAbove note)] at hheld
    exact hheld

theorem withoutVoice (h : Balanced (hand, engine)) (hnote : note ∈ engine.voices.held.notes) :
    Balanced (engine.voices.channelOf note :: hand, engine.withoutVoice note) where
  coherent := h.coherent.stop note
  perm := by
    have hstop := Voices.heldChannels_stop hnote
    have hmiddle : (hand ++ (engine.free.toList ++ engine.voices.heldChannels)).Perm
        (engine.voices.channelOf note ::
          (hand ++ (engine.free.toList ++ (engine.voices.stop note).heldChannels))) :=
      (((hstop.append_left engine.free.toList).trans List.perm_middle).append_left hand).trans List.perm_middle
    exact hmiddle.symm.trans h.perm
  deferred := by
    intro other hother
    have hmem : other ∈ engine.pedal.deferred.notes.erase note :=
      engine.pedal.notes_forget note ▸ hother
    obtain ⟨hne, hdeferred⟩ := (engine.pedal.deferred.nodup.mem_erase_iff).mp hmem
    have hheld : other ∈ engine.voices.held.notes.erase note :=
      (List.mem_erase_of_ne hne).mpr (h.deferred other hdeferred)
    rw [← engine.voices.held_stop note] at hheld
    exact hheld

theorem stop (h : Balanced (hand, engine)) (time : Float) (velocity : UInt8)
    (hnote : note ∈ engine.voices.held.notes) :
    Balanced (engine.voices.channelOf note :: hand,
      engine.stopNote time (engine.voices.channelOf note) note velocity) := by
  have hwithout := h.withoutVoice hnote
  rw [stopNote_eq]
  exact ⟨hwithout.coherent, hwithout.perm, hwithout.deferred⟩

theorem silence (h : Balanced (hand, engine)) (hnote : note ∈ engine.voices.held.notes) :
    Balanced (engine.voices.channelOf note :: hand, engine.silenceNote note) := by
  have hwithout := h.withoutVoice hnote
  rw [silenceNote_eq]
  exact ⟨hwithout.coherent, hwithout.perm, hwithout.deferred⟩

theorem report (h : Balanced (hand, engine)) (time : Float) (controller : ControllerId) (value : Float) :
    Balanced (hand, engine.sendController time engine.manager controller value false) := by
  rw [sendController_eq]
  exact ⟨h.coherent, h.perm, h.deferred⟩

theorem withInput (h : Balanced (hand, engine)) (controller : ControllerId) (value : Float) (i : RuleIndex) :
    Balanced (hand, engine.withInput controller value i) := by
  obtain ⟨parameters, published, hinput⟩ := engine.withInput_frame controller value i
  rw [hinput]
  exact ⟨h.coherent, h.perm, h.deferred⟩

theorem route (h : Balanced (hand, engine)) (time : Float) (controller : ControllerId) (value : Float)
    (i : RuleIndex) : Balanced (hand, routeRule time controller value engine i) := by
  have hinput := h.withInput controller value i
  rw [routeRule_eq]
  exact ⟨hinput.coherent, hinput.perm, hinput.deferred⟩

theorem restart {before after : Engine} (h : Restarted before after) : Balanced ([], after) where
  coherent := by
    rw [show (([] : List Channel), after).2.voices = before.voices.silence from h.voices]
    exact Voices.coherent_silence _ _
  perm := by
    have hheld : after.voices.heldChannels = [] := by
      rw [h.voices]
      rfl
    simp only [List.nil_append, h.free, hheld, List.append_nil]
    exact List.Perm.refl _
  deferred := by
    simp only [h.deferred]
    exact fun _ hmem => absurd hmem List.not_mem_nil

end Balanced

theorem Act.balanced {before after : Moment} (hact : Act before after) (h : Balanced before) :
    Balanced after := by
  cases hact with
  | quiet hquiet => exact h.quiet hquiet
  | hold velocity hnote => exact h.hold velocity hnote
  | take hpop => exact h.take hpop
  | give => exact h.give
  | start time channel velocity hnote => exact h.start time velocity hnote
  | stop time velocity hnote => exact h.stop time velocity hnote
  | silence hnote => exact h.silence hnote
  | report => exact h.report ..
  | route => exact h.route ..
  | restart hrestart => exact Balanced.restart hrestart

theorem Acts.balanced {before after : Moment} (hacts : Acts before after) (h : Balanced before) :
    Balanced after := by
  induction hacts with
  | refl => exact h
  | tail _ hact ih => exact hact.balanced ih

/-- Acts change no parameter, but a rule that takes a controller in may learn it. -/
theorem Act.get_cases {before after : Moment} (hact : Act before after) :
    (∀ id, after.2.parameters.get id = before.2.parameters.get id)
      ∨ ∃ controller value i, after.2.parameters = (before.2.withInput controller value i).parameters := by
  cases hact with
  | quiet hquiet => exact .inl fun id => congrArg (fun store => store.get id) hquiet.parameters
  | hold velocity hnote => exact .inl fun _ => rfl
  | take hpop => exact .inl fun _ => rfl
  | give hand channel engine =>
      obtain ⟨free, hfree⟩ := engine.giveBack_frame channel
      rw [hfree]
      exact .inl fun _ => rfl
  | start time channel velocity hnote =>
      exact .inl fun id => congrArg (fun store => store.get id) (parameters_startNote ..)
  | stop time velocity hnote =>
      exact .inl fun id => congrArg (fun store => store.get id) (parameters_stopNote ..)
  | silence hnote => exact .inl fun id => congrArg (fun store => store.get id) (parameters_silenceNote ..)
  | report =>
      rw [sendController_eq]
      exact .inl fun _ => rfl
  | route hand engine time controller value i =>
      rw [routeRule_eq]
      exact .inr ⟨controller, value, i, rfl⟩
  | restart hrestart => exact .inl hrestart.parameters

/-- Acts change no parameter but the input of a rule that learns. -/
theorem Act.get_eq {before after : Moment} (hact : Act before after) {id : ParameterId}
    (h : ∀ i, id = .rule i .input → (before.2.rule i).input ≠ .learn) :
    after.2.parameters.get id = before.2.parameters.get id := by
  rcases hact.get_cases with hsame | ⟨controller, value, i, hinput⟩
  · exact hsame id
  · rw [hinput]
    exact before.2.get_withInput controller value i h

end Engine

end PolyExpression
